import Boolberry.OutputIndex
import Mathlib.Data.Finset.Card

/-!
# Random outputs for a ring

`get_random_outs_for_amounts` answers a wallet that looks for outputs to mix
with. Either it draws positions until it has enough or has tried all that are
old enough, or it takes them all. Both ways keep the same invariant: what was
taken is what was tried and is eligible.
-/

namespace Boolberry
open KeyValue

def CURRENCY_TO_KEY_OUT_RELAXED : UInt8 := 0

structure OutEntry where
  globalAmountIndex : ℕ
  outKey : PublicKey
  deriving DecidableEq

structure OutsForAmount where
  amount : UInt64
  outs : List OutEntry
  deriving DecidableEq

/-- `COMMAND_RPC_GET_RANDOM_OUTPUTS_FOR_AMOUNTS::request`. -/
structure RandomOutsRequest where
  amounts : List UInt64
  outsCount : UInt64
  useForcedMixOuts : Bool

namespace TxIndex

/-- `add_out_to_get_random_outs`: the answer with output `i`, or `none` for `false`. -/
def addOutToGetRandomOuts (s : TxIndex) (now height : ℕ) (resultOuts : OutsForAmount)
    (amount : UInt64) (i : ℕ) (mixCount : UInt64) (useOnlyForcedToMix : Bool) :
    Option OutsForAmount :=
  match (s.outputs amount)[i]? with
  | none => none
  | some out =>
      match s.transactions.get out.1 with
      | none => none
      | some tce =>
          match tce.tx.vout[out.2]? with
          | none => none
          | some ot =>
              match ot.target with
              | .toKey outtk =>
                  if tce.spentFlags.length ≠ tce.tx.vout.length then none
                  else if tce.spentFlags[out.2]? = some true then none
                  else if !isTxSpendtimeUnlocked now height tce.tx.unlockTime then none
                  else if outtk.mixAttr = CURRENCY_TO_KEY_OUT_FORCED_NO_MIX then none
                  else if useOnlyForcedToMix && outtk.mixAttr == CURRENCY_TO_KEY_OUT_RELAXED then none
                  else if outtk.mixAttr ≠ CURRENCY_TO_KEY_OUT_RELAXED ∧
                      mixCount.toNat < outtk.mixAttr.toNat then none
                  else some { resultOuts with outs := resultOuts.outs ++ [⟨i, outtk.key⟩] }
              | _ => none

/-- The loop over drawn positions, and the draws it leaves; `none` if it still runs after the last. -/
def drawRandomOuts (s : TxIndex) (now height : ℕ) (req : RandomOutsRequest) (amount : UInt64)
    (upIndexLimit : ℕ) :
    List UInt64 → Finset ℕ → ℕ → ℕ → OutsForAmount → Option (OutsForAmount × List UInt64)
  | draws, used, tryCount, j, resultOuts =>
      if j = req.outsCount.toNat ∨ upIndexLimit ≤ tryCount then some (resultOuts, draws)
      else
        match draws with
        | [] => none
        | r :: draws =>
            let i := r.toNat % upIndexLimit
            if i ∈ used then
              drawRandomOuts s now height req amount upIndexLimit draws used tryCount j resultOuts
            else
              match addOutToGetRandomOuts s now height resultOuts amount i req.outsCount
                  req.useForcedMixOuts with
              | none =>
                  drawRandomOuts s now height req amount upIndexLimit draws (insert i used)
                    (tryCount + 1) j resultOuts
              | some resultOuts' =>
                  drawRandomOuts s now height req amount upIndexLimit draws (insert i used)
                    (tryCount + 1) (j + 1) resultOuts'

/-- The loop over all positions below the limit. -/
def takeAllOuts (s : TxIndex) (now height : ℕ) (req : RandomOutsRequest) (amount : UInt64)
    (resultOuts : OutsForAmount) : ℕ → OutsForAmount
  | 0 => resultOuts
  | i + 1 =>
      let r := takeAllOuts s now height req amount resultOuts i
      (addOutToGetRandomOuts s now height r amount i req.outsCount req.useForcedMixOuts).getD r

/-- The loop of `get_random_outs_for_amounts` over the amounts. -/
def getRandomOutsGo (s : TxIndex) (now height : ℕ) (req : RandomOutsRequest) :
    List UInt64 → List OutsForAmount → List UInt64 → Option (Bool × List OutsForAmount)
  | [], outs, _ => some (true, outs)
  | amount :: amounts, outs, draws =>
      if s.outputs amount = [] then
        getRandomOutsGo s now height req amounts (outs ++ [⟨amount, []⟩]) draws
      else
        let upIndexLimit := s.findEndOfAllowedIndex height amount
        if (s.outputs amount).length < upIndexLimit then some (false, outs ++ [⟨amount, []⟩])
        else if req.outsCount.toNat ≤ upIndexLimit then
          match drawRandomOuts s now height req amount upIndexLimit draws ∅ 0 0 ⟨amount, []⟩ with
          | none => none
          | some (resultOuts, draws') =>
              getRandomOutsGo s now height req amounts (outs ++ [resultOuts]) draws'
        else
          getRandomOutsGo s now height req amounts
            (outs ++ [takeAllOuts s now height req amount ⟨amount, []⟩ upIndexLimit]) draws

/-- `get_random_outs_for_amounts` on the random numbers `draws`: what it returns and the answer it
has written; `none` if it does not return within these draws. -/
def getRandomOutsForAmounts (s : TxIndex) (now height : ℕ) (req : RandomOutsRequest)
    (draws : List UInt64) : Option (Bool × List OutsForAmount) :=
  getRandomOutsGo s now height req req.amounts [] draws

theorem findEndOfAllowedIndex_le (s : TxIndex) (height : ℕ) (amount : UInt64) :
    s.findEndOfAllowedIndex height amount ≤ (s.outputs amount).length := by
  have hgo : ∀ i, s.findEndOfAllowedIndexGo height amount i ≤ i := by
    intro i
    induction i with
    | zero => exact le_rfl
    | succ i ih =>
      unfold findEndOfAllowedIndexGo
      split
      · omega
      split
      · omega
      split
      · exact le_rfl
      · omega
  exact hgo _

end TxIndex

/-- The mix attribute of an output allows to offer it for `outsCount` outputs. -/
structure MixAllowed (outsCount : UInt64) (useForced : Bool) (mixAttr : UInt8) : Prop where
  notNoMix : mixAttr ≠ CURRENCY_TO_KEY_OUT_FORCED_NO_MIX
  forced : useForced = true → mixAttr ≠ CURRENCY_TO_KEY_OUT_RELAXED
  lowerBound : mixAttr ≠ CURRENCY_TO_KEY_OUT_RELAXED → mixAttr.toNat ≤ outsCount.toNat

/-- The entry stands for an output of the amount that is unlocked, not flagged spent, and allowed by
its mix attribute. -/
def Eligible (s : TxIndex) (now height : ℕ) (req : RandomOutsRequest) (amount : UInt64)
    (e : OutEntry) : Prop :=
  ∃ out tce ot outtk, (s.outputs amount)[e.globalAmountIndex]? = some out ∧
    s.transactions.get out.1 = some tce ∧ tce.tx.vout[out.2]? = some ot ∧
    ot.target = .toKey outtk ∧ e.outKey = outtk.key ∧
    isTxSpendtimeUnlocked now height tce.tx.unlockTime = true ∧
    tce.spentFlags[out.2]? = some false ∧
    MixAllowed req.outsCount req.useForcedMixOuts outtk.mixAttr

/-- What the answer for one amount has to be. -/
structure AnswerOK (s : TxIndex) (now height : ℕ) (req : RandomOutsRequest) (amount : UInt64)
    (r : OutsForAmount) : Prop where
  forAmount : r.amount = amount
  distinct : (r.outs.map OutEntry.globalAmountIndex).Nodup
  below : ∀ e ∈ r.outs, e.globalAmountIndex < s.findEndOfAllowedIndex height amount
  eligible : ∀ e ∈ r.outs, Eligible s now height req amount e
  atMost : r.outs.length ≤ req.outsCount.toNat
  complete : r.outs.length < req.outsCount.toNat → ∀ e, Eligible s now height req amount e →
    e.globalAmountIndex < s.findEndOfAllowedIndex height amount → e ∈ r.outs

/-- Every stored transaction has a flag for each of its outputs. -/
def FlagsFit (s : TxIndex) : Prop :=
  ∀ id tce, s.transactions.get id = some tce → tce.spentFlags.length = tce.tx.vout.length

theorem flagsFit_of_reachable {E : Env} {cps : Checkpoints} {n : Node} (h : Reachable E cps n) :
    FlagsFit n.txs.index := by
  obtain ⟨F, chain, -, -, hrep⟩ := chainInv_of_reachable h
  intro id tce hget
  rw [hrep.txs.index] at hget
  obtain ⟨l₁, te, l₂, -, -, rfl⟩ := transactions_indexOf_some hrep.txs.linked.nodup_ids hget
  simp [flagsOf]

section Answer
variable {s : TxIndex} {now height : ℕ} {req : RandomOutsRequest} {amount : UInt64}

theorem Eligible.eq {e e' : OutEntry} (h : Eligible s now height req amount e)
    (h' : Eligible s now height req amount e')
    (hi : e.globalAmountIndex = e'.globalAmountIndex) : e = e' := by
  obtain ⟨out, tce, ot, outtk, hout, htce, hot, hk, hkey, -⟩ := h
  obtain ⟨out', tce', ot', outtk', hout', htce', hot', hk', hkey', -⟩ := h'
  rw [hi, hout', Option.some.injEq] at hout
  subst hout
  rw [htce', Option.some.injEq] at htce
  subst htce
  rw [hot', Option.some.injEq] at hot
  subst hot
  rw [hk', TxoutTarget.toKey.injEq] at hk
  subst hk
  cases e
  cases e'
  simp_all

theorem addOut_of_eligible (hflags : FlagsFit s) (r : OutsForAmount) {e : OutEntry}
    (h : Eligible s now height req amount e) :
    s.addOutToGetRandomOuts now height r amount e.globalAmountIndex req.outsCount
      req.useForcedMixOuts = some { r with outs := r.outs ++ [e] } := by
  obtain ⟨out, tce, ot, outtk, hout, htce, hot, hk, hkey, hunlocked, hspent, hmix⟩ := h
  unfold TxIndex.addOutToGetRandomOuts
  simp only [hout, htce, hot, hk]
  rw [if_neg (by simp [hflags _ _ htce]), if_neg (by simp [hspent]), if_neg (by simp [hunlocked]),
    if_neg hmix.notNoMix, if_neg, if_neg, ← hkey]
  · rintro ⟨hne, hlt⟩
    have := hmix.lowerBound hne
    omega
  · rw [Bool.and_eq_true, beq_iff_eq]
    exact fun h => hmix.forced h.1 h.2

theorem eligible_of_addOut {r r' : OutsForAmount} {i : ℕ}
    (h : s.addOutToGetRandomOuts now height r amount i req.outsCount req.useForcedMixOuts =
      some r') :
    ∃ e, Eligible s now height req amount e ∧ e.globalAmountIndex = i ∧
      r' = { r with outs := r.outs ++ [e] } := by
  unfold TxIndex.addOutToGetRandomOuts at h
  split at h
  · cases h
  rename_i out hout
  split at h
  · cases h
  rename_i tce htce
  split at h
  · cases h
  rename_i ot hot
  split at h
  · rename_i outtk hk
    split_ifs at h with hlen hspent hunlocked hno hforced hlow
    refine ⟨⟨i, outtk.key⟩, ⟨out, tce, ot, outtk, hout, htce, hot, hk, rfl, ?_, ?_, hno, ?_, ?_⟩, rfl,
      (Option.some.inj h).symm⟩
    · simpa using hunlocked
    · -- the flag exists because there is one for each output
      have hlt : out.2 < tce.spentFlags.length := by
        have := (List.getElem?_eq_some_iff.mp hot).1
        omega
      rw [List.getElem?_eq_getElem hlt] at hspent ⊢
      simpa using hspent
    · intro hf hr
      exact hforced (by simp [hf, hr])
    · intro hne
      by_contra hlt
      exact hlow ⟨hne, by omega⟩
  · cases h

/-- What was taken is what was tried and is eligible. -/
structure TriedOuts (s : TxIndex) (now height : ℕ) (req : RandomOutsRequest) (amount : UInt64)
    (used : Finset ℕ) (r : OutsForAmount) : Prop where
  forAmount : r.amount = amount
  distinct : (r.outs.map OutEntry.globalAmountIndex).Nodup
  sound : ∀ e ∈ r.outs, e.globalAmountIndex ∈ used ∧ Eligible s now height req amount e
  complete : ∀ e, Eligible s now height req amount e → e.globalAmountIndex ∈ used → e ∈ r.outs

theorem TriedOuts.start : TriedOuts s now height req amount ∅ ⟨amount, []⟩ :=
  ⟨rfl, List.nodup_nil, by simp, by simp⟩

/-- One more position is tried: its output is added if it is eligible. -/
theorem TriedOuts.step {used : Finset ℕ} {r : OutsForAmount} (h : TriedOuts s now height req amount used r)
    (hflags : FlagsFit s) {i : ℕ} (hi : i ∉ used) :
    TriedOuts s now height req amount (insert i used)
      ((s.addOutToGetRandomOuts now height r amount i req.outsCount req.useForcedMixOuts).getD r) := by
  cases hadd : s.addOutToGetRandomOuts now height r amount i req.outsCount req.useForcedMixOuts with
  | none =>
    refine ⟨h.forAmount, h.distinct, fun e he => ?_, fun e hel hmem => ?_⟩
    · exact ⟨Finset.mem_insert_of_mem (h.sound e he).1, (h.sound e he).2⟩
    · rcases Finset.mem_insert.mp hmem with rfl | hmem
      · rw [addOut_of_eligible hflags r hel] at hadd
        cases hadd
      · exact h.complete e hel hmem
  | some r' =>
    obtain ⟨e₀, hel₀, rfl, rfl⟩ := eligible_of_addOut hadd
    refine ⟨h.forAmount, ?_, fun e he => ?_, fun e hel hmem => ?_⟩
    · rw [Option.getD_some, List.map_append, List.map_singleton, List.nodup_append]
      refine ⟨h.distinct, List.nodup_singleton _, fun j hj j' hj' heq => ?_⟩
      obtain ⟨e, he, rfl⟩ := List.mem_map.mp hj
      rw [List.mem_singleton] at hj'
      exact hi (hj' ▸ heq ▸ (h.sound e he).1)
    · rcases List.mem_append.mp he with he | he
      · exact ⟨Finset.mem_insert_of_mem (h.sound e he).1, (h.sound e he).2⟩
      · rw [List.mem_singleton.mp he]
        exact ⟨Finset.mem_insert_self _ _, hel₀⟩
    · rcases Finset.mem_insert.mp hmem with heq | hmem
      · rw [hel.eq hel₀ heq]
        exact List.mem_append_right _ (List.mem_singleton_self e₀)
      · exact List.mem_append_left _ (h.complete e hel hmem)

theorem TriedOuts.length_le {used : Finset ℕ} {r : OutsForAmount}
    (h : TriedOuts s now height req amount used r) : r.outs.length ≤ used.card := by
  calc r.outs.length = (r.outs.map OutEntry.globalAmountIndex).toFinset.card := by
        rw [List.toFinset_card_of_nodup h.distinct, List.length_map]
    _ ≤ used.card := Finset.card_le_card fun i hi => by
        obtain ⟨e, he, rfl⟩ := List.mem_map.mp (List.mem_toFinset.mp hi)
        exact (h.sound e he).1

/-- Once there are enough outputs or no position is left, the answer is right. -/
theorem TriedOuts.answerOK {used : Finset ℕ} {r : OutsForAmount}
    (h : TriedOuts s now height req amount used r)
    (hused : used ⊆ Finset.range (s.findEndOfAllowedIndex height amount))
    (hmost : r.outs.length ≤ req.outsCount.toNat)
    (hend : r.outs.length = req.outsCount.toNat ∨
      s.findEndOfAllowedIndex height amount ≤ used.card) :
    AnswerOK s now height req amount r := by
  refine ⟨h.forAmount, h.distinct, fun e he => ?_, fun e he => (h.sound e he).2, hmost,
    fun hlt e hel hbelow => ?_⟩
  · exact Finset.mem_range.mp (hused (h.sound e he).1)
  · have hcard : (Finset.range (s.findEndOfAllowedIndex height amount)).card ≤ used.card := by
      rw [Finset.card_range]
      omega
    -- as many positions were tried as there are
    have hall := Finset.eq_of_subset_of_card_le hused hcard
    exact h.complete e hel (by rw [hall]; exact Finset.mem_range.mpr hbelow)

theorem drawRandomOuts_spec (hflags : FlagsFit s) {draws draws' : List UInt64} {used : Finset ℕ}
    {tryCount j : ℕ} {r r' : OutsForAmount} (h : TriedOuts s now height req amount used r)
    (hused : used ⊆ Finset.range (s.findEndOfAllowedIndex height amount))
    (htry : tryCount = used.card) (hj : j = r.outs.length) (hmost : j ≤ req.outsCount.toNat)
    (hdraw : s.drawRandomOuts now height req amount (s.findEndOfAllowedIndex height amount) draws
      used tryCount j r = some (r', draws')) :
    AnswerOK s now height req amount r' := by
  induction draws generalizing used tryCount j r with
  | nil =>
    unfold TxIndex.drawRandomOuts at hdraw
    split_ifs at hdraw with hend
    · cases hdraw
      exact h.answerOK hused (hj ▸ hmost) (hj ▸ htry ▸ hend)
  | cons d draws ih =>
    unfold TxIndex.drawRandomOuts at hdraw
    split_ifs at hdraw with hend
    · cases hdraw
      exact h.answerOK hused (hj ▸ hmost) (hj ▸ htry ▸ hend)
    · rw [not_or] at hend
      simp only at hdraw
      split at hdraw
      · exact ih h hused htry hj hmost hdraw
      rename_i hi
      have hlt : d.toNat % s.findEndOfAllowedIndex height amount <
          s.findEndOfAllowedIndex height amount := Nat.mod_lt _ (by omega)
      have hstep := h.step hflags hi
      have hused' := Finset.insert_subset (Finset.mem_range.mpr hlt) hused
      have htry' : tryCount + 1 = (insert (d.toNat % s.findEndOfAllowedIndex height amount) used).card := by
        rw [Finset.card_insert_of_notMem hi, htry]
      split at hdraw
      · rename_i hadd
        rw [hadd] at hstep
        exact ih hstep hused' htry' hj hmost hdraw
      · rename_i r₁ hadd
        rw [hadd] at hstep
        obtain ⟨e, -, -, rfl⟩ := eligible_of_addOut hadd
        exact ih hstep hused' htry' (by simp [hj]) (by omega) hdraw

theorem takeAllOuts_spec (hflags : FlagsFit s) (now height : ℕ) (req : RandomOutsRequest)
    (amount : UInt64) (k : ℕ) :
    TriedOuts s now height req amount (Finset.range k)
      (s.takeAllOuts now height req amount ⟨amount, []⟩ k) := by
  induction k with
  | zero => exact .start
  | succ k ih =>
    rw [Finset.range_add_one]
    exact ih.step hflags Finset.notMem_range_self

theorem getRandomOutsGo_cons (hflags : FlagsFit s) {amounts : List UInt64}
    {outs res : List OutsForAmount} {draws : List UInt64} {b : Bool}
    (h : s.getRandomOutsGo now height req (amount :: amounts) outs draws = some (b, res)) :
    ∃ r draws', AnswerOK s now height req amount r ∧
      s.getRandomOutsGo now height req amounts (outs ++ [r]) draws' = some (b, res) := by
  have hlimit := s.findEndOfAllowedIndex_le height amount
  unfold TxIndex.getRandomOutsGo at h
  simp only at h
  split_ifs at h with hnil
  · -- no position is below the limit
    refine ⟨⟨amount, []⟩, draws, (TriedOuts.start).answerOK (Finset.empty_subset _) (Nat.zero_le _)
      (Or.inr ?_), h⟩
    rw [hnil, List.length_nil] at hlimit
    simpa using hlimit
  · omega
  · split at h
    · cases h
    rename_i r draws' hr
    exact ⟨r, draws', drawRandomOuts_spec hflags .start (Finset.empty_subset _) rfl rfl
      (Nat.zero_le _) hr, h⟩
  · have htried := takeAllOuts_spec hflags now height req amount
      (s.findEndOfAllowedIndex height amount)
    have hle := htried.length_le
    rw [Finset.card_range] at hle
    exact ⟨_, draws, htried.answerOK subset_rfl (by omega) (Or.inr (Finset.card_range _).ge), h⟩

theorem getRandomOutsGo_spec (hflags : FlagsFit s) {amounts : List UInt64}
    {outs res : List OutsForAmount} {draws : List UInt64} {b : Bool}
    (h : s.getRandomOutsGo now height req amounts outs draws = some (b, res)) :
    b = true ∧ ∃ res', res = outs ++ res' ∧
      List.Forall₂ (AnswerOK s now height req) amounts res' := by
  induction amounts generalizing outs draws with
  | nil =>
    obtain ⟨rfl, rfl⟩ := Prod.mk.inj (Option.some.inj h)
    exact ⟨rfl, [], (List.append_nil _).symm, .nil⟩
  | cons amount amounts ih =>
    obtain ⟨r, draws', hr, hrest⟩ := getRandomOutsGo_cons hflags h
    obtain ⟨hb, res', rfl, hres⟩ := ih hrest
    exact ⟨hb, r :: res', List.append_assoc .., .cons hr hres⟩

end Answer

/-- Whatever is drawn, when `get_random_outs_for_amounts` returns it returns `true`, and its answer
for each amount holds different eligible outputs below the limit, no more than asked for, and fewer
only if there are no others. -/
theorem getRandomOuts_answerOK (E : Env) (cps : Checkpoints) (n : Node) (h : Reachable E cps n)
    (now : ℕ) (req : RandomOutsRequest) (draws : List UInt64) (b : Bool) (res : List OutsForAmount)
    (hret : n.txs.index.getRandomOutsForAmounts now n.blocks.length req draws = some (b, res)) :
    b = true ∧
      List.Forall₂ (AnswerOK n.txs.index now n.blocks.length req) req.amounts res := by
  obtain ⟨hb, res', hres, hall⟩ := getRandomOutsGo_spec (flagsFit_of_reachable h) hret
  rw [List.nil_append] at hres
  exact ⟨hb, hres ▸ hall⟩

/-- The output of the genesis block is found, and for an unknown amount there is none. -/
theorem getRandomOuts_answerOK_genesis : ∃ n res, Reachable sampleEnv ∅ n ∧
    res.map (fun r => r.outs.map OutEntry.globalAmountIndex) = [[0], []] ∧
    (true = true ∧ List.Forall₂ (AnswerOK n.txs.index 0 n.blocks.length ⟨[6000000000, 7], 1, false⟩)
      [6000000000, 7] res) := by
  have hdec : (sampleNode ∅ 10).bind (fun n =>
      (n.txs.index.getRandomOutsForAmounts 0 n.blocks.length ⟨[6000000000, 7], 1, false⟩ [5]).map
        fun r => (r.1, r.2.map fun r => r.outs.map OutEntry.globalAmountIndex)) =
      some (true, [[0], []]) := by decide +kernel
  obtain ⟨n, hn, hret⟩ := Option.bind_eq_some_iff.mp hdec
  obtain ⟨⟨b, res⟩, hret, hview⟩ := Option.map_eq_some_iff.mp hret
  obtain ⟨rfl, hres⟩ := Prod.mk.inj hview
  exact ⟨n, res, reachable_sampleNode hn, hres, getRandomOuts_answerOK sampleEnv ∅ n
    (reachable_sampleNode hn) 0 ⟨[6000000000, 7], 1, false⟩ [5] true res hret⟩

end Boolberry
