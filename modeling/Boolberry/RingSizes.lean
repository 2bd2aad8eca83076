import Boolberry.Reservations

/-!
# The rings of a spend

`transfer` and `sweep_below` put the real output among the daemon's: how large the ring gets, in which
order, and where the real output stands in it.
-/

namespace Boolberry
open Aborting

namespace Wallet2

/-- `transfer` up to its sources: the positions selected and what is built for them. -/
def transferSources (E : WalletEnv) (x : SpendEnv) (r : TransferRequest) (w : Wallet2) :
    Option (List ℕ × List TxSourceEntry) := do
  guard (r.dsts ≠ [] ∧ checkSwapTx x r.dsts = some true)
  let needed ← neededMoney r.fee r.dsts
  let (found, selected) ← w.selectTransfers x.now needed r.fakeOutputsCount r.outsToSpend
  guard (needed ≤ found)
  let outs ← randomOuts x r.fakeOutputsCount selected.length
  let sources ← makeSources E w r.fakeOutputsCount outs 0 selected
  return (selected, sources)

/-- `sweep_below` up to the sources of its first try. The later tries build the first ones of them. -/
def sweepSources (E : WalletEnv) (x : SpendEnv) (r : SweepRequest) (w : Wallet2) :
    Option (List ℕ × List TxSourceEntry) := do
  guard (r.addr.isSwapAddress = false)
  let found ← w.collectSweep x.now r (List.range w.transfers.length)
  guard (found ≠ [])
  let outs ← randomOuts x r.fakeOutsCount found.length
  let selected := (found.mergeSort fun a b => decide (b.2 ≤ a.2)).map Prod.fst
  let bound := min selected.length (CURRENCY_MAX_TRANSACTION_BLOB_SIZE / (108 * (r.fakeOutsCount + 1)))
  let sources ← makeSources E w r.fakeOutsCount outs 0 (selected.take bound)
  return (selected.take bound, sources)

/-- The output that transfer `i` spends: its global index and its key. -/
def realEntry (w : Wallet2) (i : ℕ) : Option (UInt64 × PublicKey) :=
  (w.transfers[i]?).bind fun td =>
    match td.tx.vout[td.internalOutputIndex]? with
    | some ⟨_, .toKey otk⟩ => some (td.globalOutputIndex, otk.key)
    | _ => none

end Wallet2

/-- The source has `fakeOutsCount` outputs beside the real one, all in strictly ascending order, and the
real one at its position. -/
structure FullRing (w : Wallet2) (fakeOutsCount : ℕ) (src : TxSourceEntry) : Prop where
  size : src.outputs.length = fakeOutsCount + 1
  ascending : (src.outputs.map Prod.fst).Pairwise (· < ·)
  real : ∃ entry, w.realEntry src.transferIndex = some entry ∧ src.outputs[src.realOutput]? = some entry

/-- The daemon's answer still has `fakeOutsCount` outputs without the real one. -/
def LeavesEnough (fakeOutsCount : ℕ) (realIndex : UInt64) (answer : List (UInt64 × PublicKey)) : Prop :=
  fakeOutsCount < answer.length ∨ realIndex ∉ answer.map Prod.fst

/-- The answers for the transfers at `positions` are all large enough. -/
def EnoughOffered (x : SpendEnv) (w : Wallet2) (fakeOutsCount : ℕ) (positions : List ℕ) : Prop :=
  ∀ outs, x.getRandomOuts = some outs → ∀ (k i : ℕ) (answer : List (UInt64 × PublicKey))
    (entry : UInt64 × PublicKey), positions[k]? = some i → outs[k]? = some answer →
    w.realEntry i = some entry → LeavesEnough fakeOutsCount entry.1 answer

/-- The daemon answers with distinct indexes. -/
def DistinctAnswers (x : SpendEnv) : Prop :=
  ∀ outs, x.getRandomOuts = some outs → ∀ answer ∈ outs, (answer.map Prod.fst).Nodup

/-- The others of a ring, in ascending order and cut to the number asked for. -/
def mixedOutputs (fakeOutsCount : ℕ) (realIndex : UInt64) (others : List (UInt64 × PublicKey)) :
    List (UInt64 × PublicKey) :=
  ((others.mergeSort fun a b => decide (a.1 ≤ b.1)).filter fun o => decide (realIndex ≠ o.1)).take
    fakeOutsCount

section Mixed

variable {fakeOutsCount : ℕ} {realIndex : UInt64} {others : List (UInt64 × PublicKey)}

theorem mixedOutputs_ne {o : UInt64 × PublicKey} (ho : o ∈ mixedOutputs fakeOutsCount realIndex others) :
    realIndex ≠ o.1 := by
  have := (List.mem_filter.mp (List.mem_of_mem_take ho)).2
  simpa using this

theorem mixedOutputs_ascending (hnodup : (others.map Prod.fst).Nodup) :
    (mixedOutputs fakeOutsCount realIndex others).Pairwise fun a b => a.1 < b.1 := by
  have hsorted : (others.mergeSort fun a b => decide (a.1 ≤ b.1)).Pairwise fun a b => a.1 ≤ b.1 := by
    refine (List.pairwise_mergeSort ?_ ?_ others).imp ?_
    · intro a b c hab hbc
      exact decide_eq_true (UInt64.le_trans (of_decide_eq_true hab) (of_decide_eq_true hbc))
    · intro a b
      rw [Bool.or_eq_true, decide_eq_true_iff, decide_eq_true_iff]
      exact UInt64.le_total a.1 b.1
    · exact fun h => of_decide_eq_true h
  have hdistinct : (others.mergeSort fun a b => decide (a.1 ≤ b.1)).Pairwise fun a b => a.1 ≠ b.1 :=
    List.pairwise_map.mp (((List.mergeSort_perm _ _).map Prod.fst).nodup_iff.mpr hnodup)
  have hstrict := (hsorted.and hdistinct).imp fun h => UInt64.lt_of_le_of_ne h.1 h.2
  exact (hstrict.sublist List.filter_sublist).sublist (List.take_sublist _ _)

theorem length_mixedOutputs (hnodup : (others.map Prod.fst).Nodup) (hlen : fakeOutsCount ≤ others.length) :
    (mixedOutputs fakeOutsCount realIndex others).length = fakeOutsCount ↔
      LeavesEnough fakeOutsCount realIndex others := by
  have hsum := List.length_eq_countP_add_countP (fun o : UInt64 × PublicKey => decide (realIndex ≠ o.1))
    (l := others)
  have hcount : others.countP (fun o => decide ¬decide (realIndex ≠ o.1) = true) =
      (others.map Prod.fst).count realIndex := by
    rw [List.count, List.countP_map]
    refine List.countP_congr fun o _ => ?_
    rw [decide_eq_true_iff, decide_eq_true_iff, not_not]
    exact ⟨fun h => beq_iff_eq.mpr h.symm, fun h => (beq_iff_eq.mp h).symm⟩
  have honce := List.nodup_iff_count_le_one.mp hnodup realIndex
  unfold mixedOutputs LeavesEnough
  rw [List.length_take, ← List.countP_eq_length_filter,
    (List.mergeSort_perm _ _).countP_eq, ← List.count_eq_zero]
  rw [hcount] at hsum
  omega

/-- A list in ascending order with one more entry put where the first that is not below it stood. -/
theorem insert_ascending (entry : UInt64 × PublicKey) {mixed : List (UInt64 × PublicKey)}
    (hmixed : mixed.Pairwise fun a b => a.1 < b.1) (hne : ∀ o ∈ mixed, entry.1 ≠ o.1) :
    let before := mixed.takeWhile fun o => decide (o.1 < entry.1)
    (before ++ entry :: mixed.drop before.length).Pairwise fun a b => a.1 < b.1 := by
  induction mixed with
  | nil => exact List.pairwise_singleton _ _
  | cons o mixed ih =>
    rw [List.pairwise_cons] at hmixed
    rw [List.forall_mem_cons] at hne
    dsimp only at ih ⊢
    by_cases hlt : o.1 < entry.1
    · rw [List.takeWhile_cons, if_pos (decide_eq_true hlt), List.length_cons, List.drop_succ_cons,
        List.cons_append, List.pairwise_cons]
      refine ⟨fun p hp => ?_, ih hmixed.2 hne.2⟩
      rcases List.mem_append.mp hp with hp | hp
      · exact hmixed.1 p ((List.takeWhile_sublist _).subset hp)
      · rcases List.mem_cons.mp hp with rfl | hp
        · exact hlt
        · exact hmixed.1 p (List.mem_of_mem_drop hp)
    · rw [List.takeWhile_cons, if_neg (by simpa using hlt)]
      have hgt : entry.1 < o.1 := UInt64.lt_of_le_of_ne (UInt64.not_lt.mp hlt) hne.1
      refine List.pairwise_cons.mpr ⟨fun p hp => ?_, List.pairwise_cons.mpr hmixed⟩
      rcases List.mem_cons.mp hp with rfl | hp
      · exact hgt
      · exact UInt64.lt_trans hgt (hmixed.1 p hp)

theorem ring_ascending (fakeOutsCount : ℕ) (realIndex : UInt64) (key : PublicKey)
    (hnodup : (others.map Prod.fst).Nodup) :
    let mixed := mixedOutputs fakeOutsCount realIndex others
    let before := mixed.takeWhile fun o => decide (o.1 < realIndex)
    (before ++ (realIndex, key) :: mixed.drop before.length).Pairwise fun a b => a.1 < b.1 :=
  insert_ascending (realIndex, key) (mixedOutputs_ascending hnodup) fun _ => mixedOutputs_ne

end Mixed

theorem makeSource_ring {E : WalletEnv} {w : Wallet2} {fakeOutsCount i : ℕ}
    {others : List (UInt64 × PublicKey)} {src : TxSourceEntry}
    (h : Wallet2.makeSource E w fakeOutsCount others i = some src)
    (hnodup : (others.map Prod.fst).Nodup) (hlen : fakeOutsCount ≤ others.length) :
    ∃ entry, w.realEntry i = some entry ∧
      (FullRing w fakeOutsCount src ↔ LeavesEnough fakeOutsCount entry.1 others) := by
  unfold Wallet2.makeSource at h
  split at h
  · cases h
  · next td htd =>
    split at h
    · next amount otk hout =>
      have hreal : w.realEntry i = some (td.globalOutputIndex, otk.key) := by
        unfold Wallet2.realEntry
        rw [htd, Option.bind_some, hout]
      refine ⟨(td.globalOutputIndex, otk.key), hreal, ?_⟩
      cases h
      have hascending := ring_ascending fakeOutsCount td.globalOutputIndex otk.key hnodup
      rw [← length_mixedOutputs hnodup hlen]
      dsimp only at hascending
      generalize hmixed : mixedOutputs fakeOutsCount td.globalOutputIndex others = mixed at *
      have hsize : (mixed.takeWhile fun o => decide (o.1 < td.globalOutputIndex)).length ≤ mixed.length :=
        (List.takeWhile_sublist _).length_le
      unfold mixedOutputs at hmixed
      rw [hmixed]
      constructor
      · intro hfull
        have := hfull.size
        simp only [List.length_append, List.length_cons, List.length_drop] at this
        omega
      · intro hlength
        refine ⟨?_, List.pairwise_map.mpr hascending, _, hreal, ?_⟩
        · simp only [List.length_append, List.length_cons, List.length_drop]
          omega
        · dsimp only
          rw [List.getElem?_append_right le_rfl, Nat.sub_self, List.getElem?_cons_zero]
    · cases h

/-- The answers from the `k`-th on are large enough for the transfers at `positions`. -/
def EnoughFrom (w : Wallet2) (fakeOutsCount : ℕ) (outs : List (List (UInt64 × PublicKey))) (k : ℕ)
    (positions : List ℕ) : Prop :=
  ∀ (j i : ℕ) (answer : List (UInt64 × PublicKey)) (entry : UInt64 × PublicKey),
    positions[j]? = some i → outs[k + j]? = some answer → w.realEntry i = some entry →
    LeavesEnough fakeOutsCount entry.1 answer

theorem enoughFrom_cons {w : Wallet2} {fakeOutsCount k i : ℕ} {outs : List (List (UInt64 × PublicKey))}
    {answer : List (UInt64 × PublicKey)} {entry : UInt64 × PublicKey} {positions : List ℕ}
    (hanswer : outs[k]? = some answer) (hentry : w.realEntry i = some entry) :
    EnoughFrom w fakeOutsCount outs k (i :: positions) ↔
      LeavesEnough fakeOutsCount entry.1 answer ∧ EnoughFrom w fakeOutsCount outs (k + 1) positions := by
  constructor
  · intro h
    refine ⟨h 0 i answer entry rfl hanswer hentry, fun j i' answer' entry' hi' hanswer' => ?_⟩
    refine h (j + 1) i' answer' entry' hi' ?_
    rw [← hanswer']
    congr 1
    omega
  · rintro ⟨hfirst, hrest⟩ j i' answer' entry' hi' hanswer' hentry'
    cases j with
    | zero =>
      cases hi'
      rw [Nat.add_zero, hanswer] at hanswer'
      rw [hentry] at hentry'
      cases hanswer'
      cases hentry'
      exact hfirst
    | succ j =>
      refine hrest j i' answer' entry' hi' ?_ hentry'
      rw [← hanswer']
      congr 1
      omega

theorem makeSources_rings {E : WalletEnv} {w : Wallet2} {fakeOutsCount k : ℕ}
    {outs : List (List (UInt64 × PublicKey))} {positions : List ℕ} {sources : List TxSourceEntry}
    (h : Wallet2.makeSources E w fakeOutsCount outs k positions = some sources)
    (hnodup : ∀ answer ∈ outs, (answer.map Prod.fst).Nodup)
    (hlen : ∀ answer ∈ outs, fakeOutsCount ≤ answer.length) (hcount : k + positions.length ≤ outs.length) :
    (∀ src ∈ sources, FullRing w fakeOutsCount src) ↔ EnoughFrom w fakeOutsCount outs k positions := by
  induction positions generalizing k sources with
  | nil =>
    cases h
    exact ⟨fun _ j i answer entry hi => (by cases hi), fun _ src hsrc => (by cases hsrc)⟩
  | cons i positions ih =>
    rw [List.length_cons] at hcount
    obtain ⟨src, hsrc, h⟩ := Option.bind_eq_some_iff.mp h
    obtain ⟨rest, hrest, rfl⟩ := Option.map_eq_some_iff.mp h
    have hk : outs[k]? = some (outs.getD k []) := by
      rw [List.getD_eq_getElem?_getD, List.getElem?_eq_getElem (show k < outs.length by omega)]
      rfl
    have hmem := List.mem_of_getElem? hk
    obtain ⟨entry, hentry, hring⟩ := makeSource_ring hsrc (hnodup _ hmem) (hlen _ hmem)
    rw [List.forall_mem_cons, hring, ih hrest (by omega), enoughFrom_cons hk hentry]

theorem randomOuts_accepted {x : SpendEnv} {fakeOutsCount count : ℕ}
    {outs : List (List (UInt64 × PublicKey))} (hpos : 0 < fakeOutsCount)
    (h : Wallet2.randomOuts x fakeOutsCount count = some outs) :
    x.getRandomOuts = some outs ∧ outs.length = count ∧ ∀ answer ∈ outs, fakeOutsCount ≤ answer.length := by
  unfold Wallet2.randomOuts at h
  rw [if_neg (by omega)] at h
  split at h
  · cases h
  · next outs' houts =>
    split_ifs at h with hbad
    cases h
    rw [not_or, not_not] at hbad
    refine ⟨houts, hbad.1, fun answer hanswer => ?_⟩
    by_contra hlt
    exact hbad.2 ⟨answer, hanswer, by omega⟩

theorem enoughOffered_iff {x : SpendEnv} {w : Wallet2} {fakeOutsCount : ℕ} {positions : List ℕ}
    {outs : List (List (UInt64 × PublicKey))} (houts : x.getRandomOuts = some outs) :
    EnoughOffered x w fakeOutsCount positions ↔ EnoughFrom w fakeOutsCount outs 0 positions := by
  constructor
  · intro h j i answer entry hi hanswer
    rw [Nat.zero_add] at hanswer
    exact h outs houts j i answer entry hi hanswer
  · intro h outs' houts' j i answer entry hi hanswer
    rw [houts] at houts'
    cases houts'
    exact h j i answer entry hi (by rw [Nat.zero_add]; exact hanswer)

theorem transferSources_rings {E : WalletEnv} {x : SpendEnv} {r : TransferRequest} {w : Wallet2}
    {positions : List ℕ} {sources : List TxSourceEntry} (hpos : 0 < r.fakeOutputsCount)
    (hdistinct : DistinctAnswers x) (h : Wallet2.transferSources E x r w = some (positions, sources)) :
    (∀ src ∈ sources, FullRing w r.fakeOutputsCount src) ↔
      EnoughOffered x w r.fakeOutputsCount positions := by
  unfold Wallet2.transferSources at h
  obtain ⟨-, -, h⟩ := Option.bind_eq_some_iff.mp h
  obtain ⟨needed, -, h⟩ := Option.bind_eq_some_iff.mp h
  obtain ⟨⟨found, selected⟩, -, h⟩ := Option.bind_eq_some_iff.mp h
  obtain ⟨-, -, h⟩ := Option.bind_eq_some_iff.mp h
  obtain ⟨outs, houts, h⟩ := Option.bind_eq_some_iff.mp h
  obtain ⟨built, hbuilt, h⟩ := Option.bind_eq_some_iff.mp h
  cases h
  obtain ⟨hanswer, hcount, hlen⟩ := randomOuts_accepted hpos houts
  exact (makeSources_rings hbuilt (hdistinct outs hanswer) hlen (by omega)).trans
    (enoughOffered_iff hanswer).symm

theorem sweepSources_rings {E : WalletEnv} {x : SpendEnv} {r : SweepRequest} {w : Wallet2}
    {positions : List ℕ} {sources : List TxSourceEntry} (hpos : 0 < r.fakeOutsCount)
    (hdistinct : DistinctAnswers x) (h : Wallet2.sweepSources E x r w = some (positions, sources)) :
    (∀ src ∈ sources, FullRing w r.fakeOutsCount src) ↔ EnoughOffered x w r.fakeOutsCount positions := by
  unfold Wallet2.sweepSources at h
  obtain ⟨-, -, h⟩ := Option.bind_eq_some_iff.mp h
  obtain ⟨found, -, h⟩ := Option.bind_eq_some_iff.mp h
  obtain ⟨-, -, h⟩ := Option.bind_eq_some_iff.mp h
  obtain ⟨outs, houts, h⟩ := Option.bind_eq_some_iff.mp h
  obtain ⟨built, hbuilt, h⟩ := Option.bind_eq_some_iff.mp h
  cases h
  obtain ⟨hanswer, hcount, hlen⟩ := randomOuts_accepted hpos houts
  refine (makeSources_rings hbuilt (hdistinct outs hanswer) hlen ?_).trans (enoughOffered_iff hanswer).symm
  rw [Nat.zero_add, hcount]
  refine (List.length_take_le' _ _).trans ?_
  rw [List.length_map, List.length_mergeSort]

theorem prepareTransfer_sources {E : WalletEnv} {x : SpendEnv} {r : TransferRequest} {w : Wallet2}
    {selected : List ℕ} {arg : CreateTxArg}
    (h : Wallet2.prepareTransfer E x r w = some (selected, arg)) :
    Wallet2.transferSources E x r w = some (selected, arg.sources) := by
  unfold Wallet2.prepareTransfer at h
  obtain ⟨u, hdsts, h⟩ := Option.bind_eq_some_iff.mp h
  obtain ⟨needed, hneeded, h⟩ := Option.bind_eq_some_iff.mp h
  obtain ⟨⟨found, sel⟩, hselect, h⟩ := Option.bind_eq_some_iff.mp h
  obtain ⟨v, henough, h⟩ := Option.bind_eq_some_iff.mp h
  obtain ⟨outs, houts, h⟩ := Option.bind_eq_some_iff.mp h
  obtain ⟨sources, hsources, h⟩ := Option.bind_eq_some_iff.mp h
  obtain ⟨⟨splittedDsts, dust⟩, -, h⟩ := Option.bind_eq_some_iff.mp h
  cases h
  refine Option.bind_eq_some_iff.mpr ⟨u, hdsts, Option.bind_eq_some_iff.mpr ⟨needed, hneeded, ?_⟩⟩
  refine Option.bind_eq_some_iff.mpr ⟨_, hselect, Option.bind_eq_some_iff.mpr ⟨v, henough, ?_⟩⟩
  exact Option.bind_eq_some_iff.mpr ⟨outs, houts, Option.bind_eq_some_iff.mpr ⟨sources, hsources, rfl⟩⟩

theorem makeSources_take {E : WalletEnv} {w : Wallet2} {fakeOutsCount k : ℕ}
    {outs : List (List (UInt64 × PublicKey))} {positions : List ℕ} {sources : List TxSourceEntry} (n : ℕ)
    (h : Wallet2.makeSources E w fakeOutsCount outs k positions = some sources) :
    Wallet2.makeSources E w fakeOutsCount outs k (positions.take n) = some (sources.take n) := by
  induction positions generalizing k sources n with
  | nil =>
    cases h
    rw [List.take_nil, List.take_nil]
    rfl
  | cons i positions ih =>
    cases n with
    | zero => rfl
    | succ n =>
      obtain ⟨src, hsrc, h⟩ := Option.bind_eq_some_iff.mp h
      obtain ⟨rest, hrest, rfl⟩ := Option.map_eq_some_iff.mp h
      exact Option.bind_eq_some_iff.mpr ⟨src, hsrc, Option.map_eq_some_iff.mpr ⟨_, ih n hrest, rfl⟩⟩

theorem prepareSweep_sources {E : WalletEnv} {x : SpendEnv} {r : SweepRequest} {w : Wallet2}
    {found : List (ℕ × UInt64)} {n : ℕ} {arg : CreateTxArg} {last : CreateTxRes}
    (h : Wallet2.prepareSweep E x r w = some (found, n, arg, last)) :
    ∃ positions sources, Wallet2.sweepSources E x r w = some (positions, sources) ∧
      ∀ src ∈ arg.sources, src ∈ sources := by
  obtain ⟨outs, hswap, hsome, hfound, houts, ⟨sources, hsources⟩, b, hb, hlast⟩ :=
    Wallet2.prepareSweep_cases h
  have hbuilt : ∃ positions, Wallet2.sweepSources E x r w = some (positions, sources) := by
    apply Exists.intro
    refine Option.bind_eq_some_iff.mpr ⟨(), (Option.guard_eq_some' _).mpr hswap, ?_⟩
    refine Option.bind_eq_some_iff.mpr ⟨_, hfound, ?_⟩
    refine Option.bind_eq_some_iff.mpr ⟨(), (Option.guard_eq_some' _).mpr hsome, ?_⟩
    exact Option.bind_eq_some_iff.mpr ⟨outs, houts, Option.bind_eq_some_iff.mpr ⟨sources, hsources, rfl⟩⟩
  have htake := makeSources_take b hsources
  rw [List.take_take, Nat.min_eq_left hb, hlast] at htake
  obtain ⟨positions, hbuilt⟩ := hbuilt
  refine ⟨positions, sources, hbuilt, fun src hsrc => ?_⟩
  rw [Option.some.inj htake] at hsrc
  exact List.mem_of_mem_take hsrc

/-- The rings that `transfer` and `sweep_below` build are full if and only if every answer they are built
from has enough outputs beside the real one. -/
theorem rings_full_iff (E : WalletEnv) (x : SpendEnv) (w : Wallet2) (hdistinct : DistinctAnswers x) :
    (∀ (r : TransferRequest) (positions : List ℕ) (sources : List TxSourceEntry),
      0 < r.fakeOutputsCount → Wallet2.transferSources E x r w = some (positions, sources) →
      ((∀ src ∈ sources, FullRing w r.fakeOutputsCount src) ↔
        EnoughOffered x w r.fakeOutputsCount positions)) ∧
    ∀ (r : SweepRequest) (positions : List ℕ) (sources : List TxSourceEntry),
      0 < r.fakeOutsCount → Wallet2.sweepSources E x r w = some (positions, sources) →
      ((∀ src ∈ sources, FullRing w r.fakeOutsCount src) ↔
        EnoughOffered x w r.fakeOutsCount positions) :=
  ⟨fun _ _ _ hpos h => transferSources_rings hpos hdistinct h,
    fun _ _ _ hpos h => sweepSources_rings hpos hdistinct h⟩

/-- A daemon that answers with `outs`, and a `construct_tx` that returns. -/
def sampleMixins (outs : List (UInt64 × PublicKey)) : SpendEnv :=
  { Wallet2.sampleSpendEnv with getRandomOuts := some [outs], constructTx := fun _ _ _ => some Wallet2.sampleRes }

/-- A transfer and a sweep with one other output in the ring. -/
def sampleMixed : TransferRequest := { Wallet2.sampleTransfer 3 [] with fakeOutputsCount := 1 }

def sampleMixedSweep : SweepRequest := { Wallet2.sampleSweep with fakeOutsCount := 1 }

theorem sampleMixins_distinct {outs : List (UInt64 × PublicKey)} (h : (outs.map Prod.fst).Nodup) :
    DistinctAnswers (sampleMixins outs) := by
  intro answers hanswers answer hanswer
  cases hanswers
  rw [List.mem_singleton.mp hanswer]
  exact h

theorem sampleMixins_enough {outs : List (UInt64 × PublicKey)} {w : Wallet2} {fakeOutsCount : ℕ}
    {positions : List ℕ} (h : fakeOutsCount < outs.length) :
    EnoughOffered (sampleMixins outs) w fakeOutsCount positions := by
  intro answers hanswers k i answer entry _ hanswer _
  cases hanswers
  cases k with
  | zero =>
    cases hanswer
    exact .inl h
  | succ k => cases hanswer

/-- The daemon knows one output besides the real one. -/
theorem rings_full_iff_sample :
    (∃ selected arg, Wallet2.prepareTransfer sampleWalletEnv (sampleMixins [(0, 5), (3, 6)]) sampleMixed
        Wallet2.sampleMature = some (selected, arg) ∧
      ∀ src ∈ arg.sources, FullRing Wallet2.sampleMature 1 src) ∧
    ∃ found n arg last, Wallet2.prepareSweep sampleWalletEnv (sampleMixins [(0, 5), (3, 6)])
        sampleMixedSweep Wallet2.sampleMature = some (found, n, arg, last) ∧
      ∀ src ∈ arg.sources, FullRing Wallet2.sampleMature 1 src := by
  have hmade : (Wallet2.prepareTransfer sampleWalletEnv (sampleMixins [(0, 5), (3, 6)]) sampleMixed
        Wallet2.sampleMature).isSome = true ∧
      (Wallet2.prepareSweep sampleWalletEnv (sampleMixins [(0, 5), (3, 6)]) sampleMixedSweep
        Wallet2.sampleMature).isSome = true := by decide +kernel
  obtain ⟨⟨selected, arg⟩, htransfer⟩ := Option.isSome_iff_exists.mp hmade.1
  obtain ⟨⟨found, n, arg', last⟩, hsweep⟩ := Option.isSome_iff_exists.mp hmade.2
  obtain ⟨positions, sources, hbuilt, hsub⟩ := prepareSweep_sources hsweep
  obtain ⟨htransfers, hsweeps⟩ := rings_full_iff sampleWalletEnv (sampleMixins [(0, 5), (3, 6)])
    Wallet2.sampleMature (sampleMixins_distinct (by decide))
  refine ⟨⟨selected, arg, htransfer, ?_⟩, found, n, arg', last, hsweep, fun src hsrc => ?_⟩
  · exact (htransfers sampleMixed selected arg.sources (by decide) (prepareTransfer_sources htransfer)).mpr
      (sampleMixins_enough (by decide))
  · exact (hsweeps sampleMixedSweep positions sources (by decide) hbuilt).mpr
      (sampleMixins_enough (by decide)) src (hsub src hsrc)

/-- A daemon that knows the real output only: the ring asked for has one other output, the one built has
none. -/
theorem ring_too_small :
    ¬∀ (E : WalletEnv) (x : SpendEnv) (r : TransferRequest) (w : Wallet2) (selected : List ℕ)
      (arg : CreateTxArg), DistinctAnswers x → 0 < r.fakeOutputsCount →
      Wallet2.prepareTransfer E x r w = some (selected, arg) →
      ∀ src ∈ arg.sources, FullRing w r.fakeOutputsCount src := by
  intro hall
  have hsizes : (Wallet2.prepareTransfer sampleWalletEnv (sampleMixins [(0, 5)]) sampleMixed
      Wallet2.sampleMature).map (fun p => p.2.sources.map fun src => src.outputs.length) =
        some [1] := by decide +kernel
  obtain ⟨p, hp, hlengths⟩ := Option.map_eq_some_iff.mp hsizes
  have hfull := hall _ _ _ _ p.1 p.2 (sampleMixins_distinct (by decide)) (by decide) hp
  obtain ⟨src, hsrc, hlength⟩ := List.mem_map.mp (hlengths ▸ List.mem_singleton_self 1)
  have := (hfull src hsrc).size
  rw [hlength] at this
  cases this

end Boolberry
