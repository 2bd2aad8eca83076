import Boolberry.BlockTransactions

/-!
# The index of a list of transactions

The abstract side of the transaction index: the transactions of a chain in chain
order, together with the set of outputs flagged as spent. `indexOf` is the index
they stand for. Adding a transaction at the end and purging the last one are the
two moves the block code makes, and each is an equation between such indexes.
-/

namespace Boolberry
open KeyValue

/-- A transaction of the main chain: its id, itself and the height of its block. -/
structure TxEntry where
  id : Hash
  tx : Transaction
  height : ℕ

/-- Which outputs are flagged as spent. -/
abbrev Flags := Hash → ℕ → Bool

instance : LawfulBEq (Hash × ℕ) := inferInstance

def Flags.mark (F : Flags) (refs : List (Hash × ℕ)) (spent : Bool) : Flags :=
  fun id n => if (id, n) ∈ refs then spent else F id n

def flagsOf (F : Flags) (te : TxEntry) : List Bool := (List.range te.tx.vout.length).map (F te.id)

/-- Append a transaction without any check. -/
def TxIndex.append (F : Flags) (s : TxIndex) (te : TxEntry) : TxIndex :=
  let r := pushTransactionToGlobalOutsIndex te.tx te.id s.outputs
  ⟨s.transactions.set te.id ⟨te.tx, te.height, r.2, flagsOf F te⟩,
    s.spentKeys.setAll (keyImages te.tx) true, r.1⟩

/-- The index that a list of transactions stands for. -/
def indexOf (F : Flags) (l : List TxEntry) : TxIndex := l.foldl (TxIndex.append F) TxIndex.empty

/-- The `txout_to_key` outputs of one amount among `vout`, numbered from `i`. -/
def outsOfAmount (a : UInt64) (id : Hash) : ℕ → List TxOut → List (Hash × ℕ)
  | _, [] => []
  | i, ot :: l =>
      match ot.target with
      | .toKey _ =>
          if ot.amount = a then (id, i) :: outsOfAmount a id (i + 1) l
          else outsOfAmount a id (i + 1) l
      | _ => outsOfAmount a id (i + 1) l

/-- The outputs of one amount of a list of transactions, in order. -/
def outputsOf (l : List TxEntry) : OutputsContainer :=
  fun a => l.flatMap fun te => outsOfAmount a te.id 0 te.tx.vout

/-- The key images of a list of transactions, in order. -/
def kimagesOf (l : List TxEntry) : List KeyImage := l.flatMap fun te => keyImages te.tx

theorem pushOuts_fst (id : Hash) (vout : List TxOut) (i : ℕ) (o : OutputsContainer) (a : UInt64) :
    (pushOuts id i vout o).1 a = o a ++ outsOfAmount a id i vout := by
  induction vout generalizing i o with
  | nil => simp [pushOuts, outsOfAmount]
  | cons ot l ih =>
    cases ht : ot.target with
    | toKey k =>
      simp only [pushOuts, outsOfAmount, ht, ih]
      by_cases h : ot.amount = a
      · subst h
        simp
      · simp [h, Function.update_of_ne (Ne.symm h)]
    | toScript t => simp only [pushOuts, outsOfAmount, ht, ih]
    | toScripthash t => simp only [pushOuts, outsOfAmount, ht, ih]

theorem pushOuts_append (id : Hash) (l l' : List TxOut) (i : ℕ) (o : OutputsContainer) :
    (pushOuts id i (l ++ l') o).1 = (pushOuts id (i + l.length) l' (pushOuts id i l o).1).1 := by
  induction l generalizing i o with
  | nil => rfl
  | cons ot l ih =>
    have hlen : i + (ot :: l).length = i + 1 + l.length := by simp; omega
    rw [hlen]
    cases ht : ot.target <;> simp only [List.cons_append, pushOuts, ht, ih]

/-- Popping the outputs of the transaction pushed last restores the lists. -/
theorem popTransactionFromGlobalIndex_push (tx : Transaction) (id : Hash) (o : OutputsContainer) :
    popTransactionFromGlobalIndex tx id (pushTransactionToGlobalOutsIndex tx id o).1 = .ok o := by
  unfold popTransactionFromGlobalIndex pushTransactionToGlobalOutsIndex
  induction tx.vout using List.reverseRecOn with
  | nil => rfl
  | append_singleton l ot ih =>
    rw [List.reverse_append, pushOuts_append]
    simp only [List.reverse_singleton, List.singleton_append, Nat.zero_add]
    generalize (pushOuts id 0 l o).1 = o' at ih
    cases ht : ot.target with
    | toKey k =>
      simp only [pushOuts, popOuts, ht, Function.update_self, List.getLast?_append,
        List.getLast?_singleton, Option.some_or, List.length_reverse, if_true,
        List.dropLast_concat, Function.update_idem, Function.update_eq_self]
      exact ih
    | toScript t =>
      simp only [pushOuts, popOuts, ht]
      exact ih
    | toScripthash t =>
      simp only [pushOuts, popOuts, ht]
      exact ih

theorem indexOf_append (F : Flags) (l : List TxEntry) (te : TxEntry) :
    indexOf F (l ++ [te]) = (indexOf F l).append F te := by
  simp [indexOf, List.foldl_append]

theorem outputs_indexOf (F : Flags) (l : List TxEntry) : (indexOf F l).outputs = outputsOf l := by
  induction l using List.reverseRecOn with
  | nil => rfl
  | append_singleton l te ih =>
    funext a
    rw [indexOf_append]
    simp only [TxIndex.append, pushTransactionToGlobalOutsIndex, ih, pushOuts_fst]
    simp [outputsOf]

theorem outputsOf_append (l l' : List TxEntry) (a : UInt64) :
    outputsOf (l ++ l') a = outputsOf l a ++ outputsOf l' a := by
  simp [outputsOf]

theorem kimagesOf_append (l l' : List TxEntry) : kimagesOf (l ++ l') = kimagesOf l ++ kimagesOf l' := by
  simp [kimagesOf]

theorem mem_outsOfAmount {a : UInt64} {id : Hash} {i : ℕ} {vout : List TxOut} {r : Hash × ℕ}
    (h : r ∈ outsOfAmount a id i vout) : r.1 = id ∧ i ≤ r.2 ∧ r.2 < i + vout.length := by
  induction vout generalizing i with
  | nil => simp [outsOfAmount] at h
  | cons ot l ih =>
    have hrest : r ∈ outsOfAmount a id (i + 1) l →
        r.1 = id ∧ i ≤ r.2 ∧ r.2 < i + (ot :: l).length := by
      intro hr
      obtain ⟨h1, h2, h3⟩ := ih hr
      exact ⟨h1, by omega, by simp only [List.length_cons]; omega⟩
    unfold outsOfAmount at h
    split at h
    · split_ifs at h with ha
      · rcases List.mem_cons.mp h with rfl | h
        · simp
        · exact hrest h
      · exact hrest h
    · exact hrest h

theorem exists_of_mem_outputsOf {l : List TxEntry} {a : UInt64} {r : Hash × ℕ}
    (h : r ∈ outputsOf l a) : ∃ te ∈ l, te.id = r.1 ∧ r.2 < te.tx.vout.length := by
  obtain ⟨te, hte, hr⟩ := List.mem_flatMap.mp h
  obtain ⟨h1, _, h3⟩ := mem_outsOfAmount hr
  exact ⟨te, hte, h1.symm, by simpa using h3⟩

theorem spentKeys_indexOf (F : Flags) (l : List TxEntry) (k : KeyImage) :
    (indexOf F l).spentKeys.get k = if k ∈ kimagesOf l then some true else none := by
  induction l using List.reverseRecOn with
  | nil => simp [indexOf, kimagesOf, TxIndex.empty]
  | append_singleton l te ih =>
    rw [indexOf_append, kimagesOf_append]
    simp only [TxIndex.append, Map.get_setAll, ih, List.mem_append]
    by_cases h : k ∈ keyImages te.tx <;> simp [kimagesOf, h]

theorem spentKeys_indexOf_congr (F F' : Flags) (l : List TxEntry) :
    (indexOf F l).spentKeys = (indexOf F' l).spentKeys :=
  Map.ext fun k => by rw [spentKeys_indexOf, spentKeys_indexOf]

theorem transactions_indexOf_none (F : Flags) {l : List TxEntry} {id : Hash}
    (h : id ∉ l.map TxEntry.id) : (indexOf F l).transactions.get id = none := by
  induction l using List.reverseRecOn with
  | nil => simp [indexOf, TxIndex.empty]
  | append_singleton l te ih =>
    simp only [List.map_append, List.map_cons, List.map_nil, List.mem_append, List.mem_singleton,
      not_or] at h
    rw [indexOf_append]
    simp only [TxIndex.append, Map.get_set_of_ne _ _ h.2]
    exact ih h.1

theorem transactions_indexOf (F : Flags) (l₁ : List TxEntry) (te : TxEntry) (l₂ : List TxEntry)
    (h : te.id ∉ l₂.map TxEntry.id) :
    (indexOf F (l₁ ++ te :: l₂)).transactions.get te.id =
      some ⟨te.tx, te.height, (pushTransactionToGlobalOutsIndex te.tx te.id (outputsOf l₁)).2,
        flagsOf F te⟩ := by
  induction l₂ using List.reverseRecOn with
  | nil =>
    rw [indexOf_append]
    simp [TxIndex.append, outputs_indexOf]
  | append_singleton l te' ih =>
    simp only [List.map_append, List.map_cons, List.map_nil, List.mem_append, List.mem_singleton,
      not_or] at h
    rw [← List.cons_append, ← List.append_assoc, indexOf_append]
    simp only [TxIndex.append, Map.get_set_of_ne _ _ h.2]
    exact ih h.1

theorem transactions_indexOf_mem (F : Flags) {l : List TxEntry} (hnd : (l.map TxEntry.id).Nodup)
    {te : TxEntry} (hte : te ∈ l) :
    ∃ e, (indexOf F l).transactions.get te.id = some e ∧ e.tx = te.tx ∧
      e.keeperBlockHeight = te.height ∧ e.spentFlags = flagsOf F te := by
  obtain ⟨l₁, l₂, rfl⟩ := List.append_of_mem hte
  rw [List.map_append, List.map_cons] at hnd
  exact ⟨_, transactions_indexOf F l₁ te l₂
    (List.nodup_cons.mp (List.nodup_append.mp hnd).2.1).1, rfl, rfl, rfl⟩

/-- What the index stores for an id is either nothing or the entry of one of the transactions. -/
theorem transactions_indexOf_some {F : Flags} {l : List TxEntry} {id : Hash}
    {tce : TransactionChainEntry} (hnd : (l.map TxEntry.id).Nodup)
    (h : (indexOf F l).transactions.get id = some tce) :
    ∃ l₁ te l₂, l = l₁ ++ te :: l₂ ∧ te.id = id ∧
      tce = ⟨te.tx, te.height, (pushTransactionToGlobalOutsIndex te.tx te.id (outputsOf l₁)).2,
        flagsOf F te⟩ := by
  by_cases hid : id ∈ l.map TxEntry.id
  · obtain ⟨te, hte, rfl⟩ := List.mem_map.mp hid
    obtain ⟨l₁, l₂, rfl⟩ := List.append_of_mem hte
    refine ⟨l₁, te, l₂, rfl, rfl, ?_⟩
    have hnot : te.id ∉ l₂.map TxEntry.id := by
      rw [List.map_append, List.map_cons] at hnd
      exact (List.nodup_cons.mp (List.nodup_append.mp hnd).2.1).1
    rw [transactions_indexOf F l₁ te l₂ hnot] at h
    exact (Option.some.inj h).symm
  · rw [transactions_indexOf_none F hid] at h
    simp at h

/-- The index of `l` with other spent keys. -/
def indexWith (F : Flags) (l : List TxEntry) (K : Map KeyImage Bool) : TxIndex :=
  ⟨(indexOf F l).transactions, K, outputsOf l⟩

theorem indexOf_eq_indexWith (F F' : Flags) (l : List TxEntry) :
    indexOf F l = indexWith F l (indexOf F' l).spentKeys := by
  rw [spentKeys_indexOf_congr F' F, indexWith, ← outputs_indexOf F]

theorem Flags.mark_nil (F : Flags) (v : Bool) : F.mark [] v = F := by
  funext id n
  simp [Flags.mark]

theorem Flags.mark_append (F : Flags) (r r' : List (Hash × ℕ)) (v : Bool) :
    (F.mark r v).mark r' v = F.mark (r ++ r') v := by
  funext id n
  by_cases h : (id, n) ∈ r' <;> simp [Flags.mark, h]

theorem Flags.mark_mark (F : Flags) (r : List (Hash × ℕ)) (v v' : Bool) :
    (F.mark r v).mark r v' = F.mark r v' := by
  funext id n
  by_cases h : (id, n) ∈ r <;> simp [Flags.mark, h]

theorem flagsOf_mark (F : Flags) (te : TxEntry) (n : ℕ) (v : Bool) :
    flagsOf (F.mark [(te.id, n)] v) te = (flagsOf F te).set n v := by
  refine List.ext_getElem (by simp [flagsOf]) fun i h₁ h₂ => ?_
  rw [List.getElem_set]
  by_cases h : n = i
  · subst h
    simp [flagsOf, Flags.mark]
  · simp [flagsOf, Flags.mark, h, Ne.symm h]

theorem flagsOf_mark_of_ne (F : Flags) (te : TxEntry) {id : Hash} (n : ℕ) (v : Bool)
    (h : te.id ≠ id) : flagsOf (F.mark [(id, n)] v) te = flagsOf F te := by
  simp [flagsOf, Flags.mark, h]

theorem updateSpentTxFlags_indexOf (F : Flags) {l : List TxEntry} (K : Map KeyImage Bool)
    (hnd : (l.map TxEntry.id).Nodup) {te : TxEntry} (hte : te ∈ l) {n : ℕ}
    (hn : n < te.tx.vout.length) (v : Bool) :
    TxIndex.updateSpentTxFlags (indexWith F l K) te.id n v =
      some (indexWith (F.mark [(te.id, n)] v) l K) := by
  obtain ⟨l₁, l₂, rfl⟩ := List.append_of_mem hte
  have hsplit := hnd
  rw [List.map_append, List.map_cons] at hsplit
  have hnot : te.id ∉ l₂.map TxEntry.id :=
    (List.nodup_cons.mp (List.nodup_append.mp hsplit).2.1).1
  have hget := transactions_indexOf F l₁ te l₂ hnot
  have hlen : n < (flagsOf F te).length := by simpa [flagsOf] using hn
  simp only [TxIndex.updateSpentTxFlags, indexWith, hget, hlen, if_true]
  congr 2
  refine Map.ext fun id => ?_
  rw [Map.get_set]
  split_ifs with hid
  · rw [hid, transactions_indexOf _ l₁ te l₂ hnot, flagsOf_mark]
  · by_cases hmem : id ∈ (l₁ ++ te :: l₂).map TxEntry.id
    · obtain ⟨te', hte', rfl⟩ := List.mem_map.mp hmem
      obtain ⟨m₁, m₂, hm⟩ := List.append_of_mem hte'
      have hnot' : te'.id ∉ m₂.map TxEntry.id := by
        rw [hm, List.map_append, List.map_cons] at hnd
        exact (List.nodup_cons.mp (List.nodup_append.mp hnd).2.1).1
      rw [hm, transactions_indexOf F m₁ te' m₂ hnot', transactions_indexOf _ m₁ te' m₂ hnot',
        flagsOf_mark_of_ne F te' n v hid]
    · rw [transactions_indexOf_none F hmem, transactions_indexOf_none _ hmem]

/-- The output an input with a single offset refers to. -/
def directRef (o : OutputsContainer) : Txin → Option (Hash × ℕ)
  | .toKey inp =>
      match inp.keyOffsets with
      | [globalIndex] => (o inp.amount)[globalIndex.toNat]?
      | _ => none
  | _ => none

def directRefs (o : OutputsContainer) (vin : List Txin) : List (Hash × ℕ) :=
  vin.filterMap (directRef o)

/-- An input of a kind the index takes, whose single offset (if it has just one) is in range. -/
def Resolves (o : OutputsContainer) : Txin → Prop
  | .toKey inp => ∀ g, inp.keyOffsets = [g] → g.toNat < (o inp.amount).length
  | .gen _ => True
  | _ => False

/-- The key images of a list of inputs. -/
def kimagesOfVin (vin : List Txin) : List KeyImage :=
  (vin.filterMap Txin.toKey?).map TxinToKey.kImage

theorem keyImages_eq (tx : Transaction) : keyImages tx = kimagesOfVin tx.vin := rfl

section Inputs

variable {l : List TxEntry} (hnd : (l.map TxEntry.id).Nodup)
include hnd

theorem updateDirectSpend_indexOf (F : Flags) (K : Map KeyImage Bool) {inp : TxinToKey}
    (hr : Resolves (outputsOf l) (.toKey inp)) (v : Bool) :
    TxIndex.updateDirectSpend (indexWith F l K) inp v =
      .ok (indexWith (F.mark (directRefs (outputsOf l) [.toKey inp]) v) l K) := by
  unfold TxIndex.updateDirectSpend
  match hoff : inp.keyOffsets with
  | [] => simp [directRefs, directRef, hoff, Flags.mark_nil]
  | [g] =>
    have hlt := hr g hoff
    have hget : (outputsOf l inp.amount)[g.toNat]? = some (outputsOf l inp.amount)[g.toNat] :=
      List.getElem?_eq_getElem hlt
    obtain ⟨te, hte, hid, hn⟩ := exists_of_mem_outputsOf (List.getElem_mem hlt)
    have hupd := updateSpentTxFlags_indexOf F K hnd hte hn v
    rw [hid] at hupd
    have hrefs : directRefs (outputsOf l) [.toKey inp] = [(outputsOf l inp.amount)[g.toNat]] := by
      simp [directRefs, directRef, hoff, hget]
    have houts : (indexWith F l K).outputs = outputsOf l := rfl
    simp only [TxIndex.updateSpentTxFlagsForInput, houts, hget, hupd, hrefs]
  | _ :: _ :: _ => simp [directRefs, directRef, hoff, Flags.mark_nil]

theorem addTransactionInputs_indexOf (F : Flags) (K : Map KeyImage Bool) (vin : List Txin)
    (hr : ∀ i ∈ vin, Resolves (outputsOf l) i) (hk : (kimagesOfVin vin).Nodup)
    (hfree : ∀ k ∈ kimagesOfVin vin, K.get k = none) :
    TxIndex.addTransactionInputs (indexWith F l K) vin =
      .ok (indexWith (F.mark (directRefs (outputsOf l) vin) true) l
        (K.setAll (kimagesOfVin vin) true)) := by
  induction vin generalizing F K with
  | nil => simp [TxIndex.addTransactionInputs, directRefs, Flags.mark_nil, kimagesOfVin, Map.setAll]
  | cons i vin ih =>
    have hri := hr i (by simp)
    have hrest : ∀ j ∈ vin, Resolves (outputsOf l) j := fun j hj => hr j (by simp [hj])
    cases i with
    | toKey inp =>
      have himages : kimagesOfVin (.toKey inp :: vin) = inp.kImage :: kimagesOfVin vin := rfl
      rw [himages] at hk hfree ⊢
      obtain ⟨hnotin, hk⟩ := List.nodup_cons.mp hk
      have hki := hfree inp.kImage (by simp)
      have hupd := updateDirectSpend_indexOf hnd F (K.set inp.kImage true) hri true
      have hstep : TxIndex.addTransactionInput (indexWith F l K) (.toKey inp) =
          .ok (indexWith (F.mark (directRefs (outputsOf l) [.toKey inp]) true) l
            (K.set inp.kImage true)) := by
        rw [← hupd]
        simp only [TxIndex.addTransactionInput, indexWith, hki]
      rw [TxIndex.addTransactionInputs, hstep]
      have hfree' : ∀ k ∈ kimagesOfVin vin, (K.set inp.kImage true).get k = none := by
        intro k hkm
        have hne : k ≠ inp.kImage := fun he => hnotin (he ▸ hkm)
        rw [Map.get_set_of_ne _ _ hne]
        exact hfree k (by simp [hkm])
      have hnext := ih (F.mark (directRefs (outputsOf l) [.toKey inp]) true)
        (K.set inp.kImage true) hrest hk hfree'
      rw [Flags.mark_append] at hnext
      have hrefs : directRefs (outputsOf l) (.toKey inp :: vin) =
          directRefs (outputsOf l) [.toKey inp] ++ directRefs (outputsOf l) vin := by
        simp only [directRefs, ← List.filterMap_append, List.singleton_append]
      rw [hrefs]
      exact hnext
    | gen h => exact ih F K hrest hk hfree
    | toScript a b c => exact hri.elim
    | toScripthash a b c d => exact hri.elim

theorem purgeTransactionKeyimages_indexOf (F : Flags) (K : Map KeyImage Bool) (vin : List Txin)
    (hr : ∀ i ∈ vin, Resolves (outputsOf l) i) (hk : (kimagesOfVin vin).Nodup)
    (hin : ∀ k ∈ kimagesOfVin vin, (K.get k).isSome = true) :
    TxIndex.purgeTransactionKeyimages true (indexWith F l K) vin =
      .ok (indexWith (F.mark (directRefs (outputsOf l) vin) false) l
        (K.eraseAll (kimagesOfVin vin))) := by
  induction vin generalizing F K with
  | nil =>
    simp [TxIndex.purgeTransactionKeyimages, directRefs, Flags.mark_nil, kimagesOfVin, Map.eraseAll]
  | cons i vin ih =>
    have hri := hr i (by simp)
    have hrest : ∀ j ∈ vin, Resolves (outputsOf l) j := fun j hj => hr j (by simp [hj])
    cases i with
    | toKey inp =>
      have himages : kimagesOfVin (.toKey inp :: vin) = inp.kImage :: kimagesOfVin vin := rfl
      rw [himages] at hk hin ⊢
      obtain ⟨hnotin, hk⟩ := List.nodup_cons.mp hk
      have hki : (K.get inp.kImage).isNone = false := by
        have := hin inp.kImage (by simp)
        cases hg : K.get inp.kImage <;> simp_all
      have hupd := updateDirectSpend_indexOf hnd F (K.erase inp.kImage) hri false
      have hstep : TxIndex.purgeTransactionInput true (indexWith F l K) (.toKey inp) =
          .ok (indexWith (F.mark (directRefs (outputsOf l) [.toKey inp]) false) l
            (K.erase inp.kImage)) := by
        rw [← hupd]
        simp only [TxIndex.purgeTransactionInput, indexWith, hki, Bool.false_and,
          Bool.false_eq_true, if_false]
      rw [TxIndex.purgeTransactionKeyimages, hstep]
      have hin' : ∀ k ∈ kimagesOfVin vin, ((K.erase inp.kImage).get k).isSome = true := by
        intro k hkm
        have hne : k ≠ inp.kImage := fun he => hnotin (he ▸ hkm)
        rw [Map.get_erase_of_ne _ hne]
        exact hin k (by simp [hkm])
      have hnext := ih (F.mark (directRefs (outputsOf l) [.toKey inp]) false)
        (K.erase inp.kImage) hrest hk hin'
      rw [Flags.mark_append] at hnext
      have hrefs : directRefs (outputsOf l) (.toKey inp :: vin) =
          directRefs (outputsOf l) [.toKey inp] ++ directRefs (outputsOf l) vin := by
        simp only [directRefs, ← List.filterMap_append, List.singleton_append]
      rw [hrefs, Map.eraseAll_cons]
      exact hnext
    | gen h => exact ih F K hrest hk hin
    | toScript a b c => exact hri.elim
    | toScripthash a b c d => exact hri.elim

end Inputs

end Boolberry
