import Boolberry.TxLedger

/-!
# Block transactions refine the transaction list

A `TxState` represents a list of transactions when its index is the index of the
list, its alias histories are those the coinbases of the list make, and its pool
is in order and holds no transaction of the list. Adding a transaction of a
block appends to the list or leaves it alone; purging takes the last one off.
-/

namespace Boolberry
open KeyValue TxMemoryPool

/-- The alias entry a transaction carries, if it is a coinbase with one. -/
def aliasOfTx (E : Env) (tx : Transaction) : Option AliasInfo :=
  if isCoinbase tx then
    match parseAndValidateTxExtra E tx with
    | none => none
    | some ei => if ei.aliasInfo.aliasName = [] then none else some ei.aliasInfo
  else none

/-- The history of a name after a list of transactions. -/
def historyOf (E : Env) (l : List TxEntry) (name : Blob) : List AliasInfoBase :=
  ((l.filterMap fun te => aliasOfTx E te.tx).filter fun ai => ai.aliasName = name).map
    AliasInfo.toAliasInfoBase

theorem historyOf_append (E : Env) (l : List TxEntry) (te : TxEntry) (name : Blob) :
    historyOf E (l ++ [te]) name = historyOf E l name ++
      (match aliasOfTx E te.tx with
        | none => []
        | some ai => if ai.aliasName = name then [ai.toAliasInfoBase] else []) := by
  unfold historyOf
  cases h : aliasOfTx E te.tx with
  | none => simp [h]
  | some ai => by_cases hn : ai.aliasName = name <;> simp [h, hn]

/-- The extra field parses and its alias entry, if any, is allowed behind `l`. -/
def ExtraOK (E : Env) (l : List TxEntry) (tx : Transaction) : Prop :=
  (parseAndValidateTxExtra E tx).isSome = true ∧
    ∀ ai, aliasOfTx E tx = some ai → AliasDb.Allowed E (historyOf E l ai.aliasName) ai

/-- The alias containers stand for the histories of `l`. -/
structure AliasRep (E : Env) (l : List TxEntry) (d : AliasDb) : Prop where
  addrOK : d.AddrOK
  history : ∀ name, d.history name = historyOf E l name

theorem aliasOfTx_name {E : Env} {tx : Transaction} {ai : AliasInfo} (h : aliasOfTx E tx = some ai) :
    ai.aliasName ≠ [] := by
  unfold aliasOfTx at h
  split_ifs at h
  cases hp : parseAndValidateTxExtra E tx with
  | none => simp [hp] at h
  | some ei =>
    simp only [hp] at h
    split_ifs at h with hn
    exact Option.some.inj h ▸ hn

theorem processBlockchainTxExtra_eq (E : Env) (d : AliasDb) (tx : Transaction) :
    processBlockchainTxExtra E d tx =
      if (parseAndValidateTxExtra E tx).isSome then
        match aliasOfTx E tx with
        | none => some d
        | some ai => d.putAliasInfo E ai
      else none := by
  unfold processBlockchainTxExtra aliasOfTx
  cases parseAndValidateTxExtra E tx with
  | none => simp
  | some ei => by_cases hc : isCoinbase tx = true <;> by_cases hn : ei.aliasInfo.aliasName = [] <;>
      simp [hc, hn]

theorem unprocessBlockchainTxExtra_eq {E : Env} {d : AliasDb} {tx : Transaction}
    (h : (parseAndValidateTxExtra E tx).isSome = true) :
    unprocessBlockchainTxExtra E d tx =
      match aliasOfTx E tx with
      | none => some d
      | some ai => d.popAliasInfo ai := by
  unfold unprocessBlockchainTxExtra aliasOfTx
  cases hp : parseAndValidateTxExtra E tx with
  | none => simp [hp] at h
  | some ei => by_cases hc : isCoinbase tx = true <;> by_cases hn : ei.aliasInfo.aliasName = [] <;>
      simp [hc, hn]

/-- The extra of a transaction is processed exactly when it is in order behind `l`. -/
theorem processBlockchainTxExtra_spec {E : Env} {l : List TxEntry} {d : AliasDb} (te : TxEntry)
    (hd : AliasRep E l d) :
    (ExtraOK E l te.tx ∧ ∃ d', processBlockchainTxExtra E d te.tx = some d' ∧
      AliasRep E (l ++ [te]) d') ∨
    (¬ExtraOK E l te.tx ∧ processBlockchainTxExtra E d te.tx = none) := by
  rw [processBlockchainTxExtra_eq]
  by_cases hp : (parseAndValidateTxExtra E te.tx).isSome = true
  swap
  · exact Or.inr ⟨fun h => hp h.1, by simp [hp]⟩
  simp only [hp, if_true]
  cases ha : aliasOfTx E te.tx with
  | none =>
    refine Or.inl ⟨⟨hp, fun ai h => ?_⟩, d, rfl, hd.addrOK, fun name => ?_⟩
    · rw [ha] at h
      simp at h
    · rw [historyOf_append, ha, hd.history]
      simp
  | some ai =>
    have hiff := AliasDb.putAliasInfo_isSome E d ai
    rw [hd.history] at hiff
    cases hput : d.putAliasInfo E ai with
    | none =>
      refine Or.inr ⟨fun h => ?_, hput⟩
      rw [hput] at hiff
      have := hiff.mpr ⟨aliasOfTx_name ha, h.2 ai ha⟩
      simp at this
    | some d' =>
      rw [hput] at hiff
      have hall := (hiff.mp rfl).2
      obtain ⟨hok, hhist⟩ := AliasDb.putAliasInfo_spec hd.addrOK hput
      refine Or.inl ⟨⟨hp, fun ai' h => ?_⟩, d', hput, hok, fun name => ?_⟩
      · rw [ha] at h
        exact Option.some.inj h ▸ hall
      · rw [hhist, historyOf_append, ha, hd.history]
        by_cases hn : name = ai.aliasName
        · simp [hn]
        · simp [hn, Ne.symm hn]

/-- Unprocessing the extra of the last transaction takes its alias entry back. -/
theorem unprocessBlockchainTxExtra_spec {E : Env} {l : List TxEntry} {d : AliasDb} {te : TxEntry}
    (hp : (parseAndValidateTxExtra E te.tx).isSome = true) (hd : AliasRep E (l ++ [te]) d) :
    ∃ d', unprocessBlockchainTxExtra E d te.tx = some d' ∧ AliasRep E l d' := by
  rw [unprocessBlockchainTxExtra_eq hp]
  cases ha : aliasOfTx E te.tx with
  | none =>
    refine ⟨d, rfl, hd.addrOK, fun name => ?_⟩
    rw [hd.history, historyOf_append, ha]
    simp
  | some ai =>
    have hne : d.history ai.aliasName ≠ [] := by
      rw [hd.history, historyOf_append, ha]
      simp
    obtain ⟨d', hpop, hok, hhist⟩ := AliasDb.popAliasInfo_spec hd.addrOK (aliasOfTx_name ha) hne
    refine ⟨d', hpop, hok, fun name => ?_⟩
    rw [hhist, hd.history, historyOf_append, ha]
    by_cases hn : name = ai.aliasName
    · simp [hn]
    · simp [hn, Ne.symm hn]

/-- The inputs of `tx` resolve behind `l` and spend key images that are new there. -/
structure InputsOK (l : List TxEntry) (tx : Transaction) : Prop where
  resolves : ∀ i ∈ tx.vin, Resolves (outputsOf l) i
  nodup : (keyImages tx).Nodup
  fresh : ∀ k ∈ keyImages tx, k ∉ kimagesOf l

/-- `te` can follow `l`: a new id that is its hash, inputs and extra in order, and the pool's checks
unless it is a coinbase. -/
structure Addable (E : Env) (l : List TxEntry) (te : TxEntry) : Prop extends
    InputsOK l te.tx where
  hash : getTransactionHash E te.tx = te.id
  id_notMem : te.id ∉ l.map TxEntry.id
  extra : ExtraOK E l te.tx
  semantic : isCoinbase te.tx = false → Semantic E te.tx

/-- Every transaction of the list can follow those before it. -/
inductive Linked (E : Env) : List TxEntry → Prop
  | nil : Linked E []
  | snoc {l : List TxEntry} {te : TxEntry} : Linked E l → Addable E l te → Linked E (l ++ [te])

theorem Linked.of_append_singleton {E : Env} {l : List TxEntry} {te : TxEntry}
    (h : Linked E (l ++ [te])) : Linked E l ∧ Addable E l te := by
  generalize hm : l ++ [te] = m at h
  cases h with
  | nil => simp at hm
  | snoc hl ha =>
    obtain ⟨rfl, hte⟩ := List.append_inj' hm rfl
    obtain rfl := List.singleton_injective hte
    exact ⟨hl, ha⟩

theorem Linked.of_append {E : Env} {l l' : List TxEntry} (h : Linked E (l ++ l')) : Linked E l := by
  induction l' using List.reverseRecOn with
  | nil => simpa using h
  | append_singleton l' te ih =>
    rw [← List.append_assoc] at h
    exact ih h.of_append_singleton.1

theorem Linked.addable {E : Env} {l₁ l₂ : List TxEntry} {te : TxEntry}
    (h : Linked E (l₁ ++ te :: l₂)) : Addable E l₁ te := by
  rw [List.append_cons] at h
  exact h.of_append.of_append_singleton.2

theorem Linked.nodup_ids {E : Env} {l : List TxEntry} (h : Linked E l) :
    (l.map TxEntry.id).Nodup := by
  induction h with
  | nil => simp
  | snoc _ ha ih =>
    rw [List.map_append, List.nodup_append]
    refine ⟨ih, by simp, fun a hmem b hb => ?_⟩
    simp only [List.map_cons, List.map_nil, List.mem_singleton] at hb
    exact fun he => ha.id_notMem (hb ▸ he ▸ hmem)

theorem Linked.nodup_kimages {E : Env} {l : List TxEntry} (h : Linked E l) :
    (kimagesOf l).Nodup := by
  induction h with
  | nil => simp [kimagesOf]
  | @snoc l te _ ha ih =>
    have hte : kimagesOf [te] = keyImages te.tx := by simp [kimagesOf]
    rw [kimagesOf_append, hte, List.nodup_append]
    exact ⟨ih, ha.nodup, fun a hmem b hb he => ha.fresh b hb (he ▸ hmem)⟩

theorem resolves_append {l l' : List TxEntry} {i : Txin} (h : Resolves (outputsOf l) i) :
    Resolves (outputsOf (l ++ l')) i := by
  cases i with
  | toKey inp =>
    intro g hg
    have := h g hg
    rw [outputsOf_append, List.length_append]
    omega
  | gen g => trivial
  | toScript a b c => exact h.elim
  | toScripthash a b c d => exact h.elim

/-- The outputs that resolved inputs refer to do not change as the list grows. -/
theorem directRefs_append {l l' : List TxEntry} {vin : List Txin}
    (h : ∀ i ∈ vin, Resolves (outputsOf l) i) :
    directRefs (outputsOf (l ++ l')) vin = directRefs (outputsOf l) vin := by
  refine List.filterMap_congr fun i hi => ?_
  cases i with
  | toKey inp =>
    match hoff : inp.keyOffsets with
    | [] => simp [directRef, hoff]
    | [g] =>
      simp only [directRef, hoff]
      rw [outputsOf_append, List.getElem?_append_left (h _ hi g hoff)]
    | _ :: _ :: _ => simp [directRef, hoff]
  | gen g => rfl
  | toScript a b c => rfl
  | toScripthash a b c d => rfl

theorem indexOf_congr {F F' : Flags} {l : List TxEntry}
    (h : ∀ te ∈ l, flagsOf F te = flagsOf F' te) : indexOf F l = indexOf F' l := by
  induction l using List.reverseRecOn with
  | nil => rfl
  | append_singleton l te ih =>
    rw [indexOf_append, indexOf_append, ih fun te hte => h te (by simp [hte])]
    simp only [TxIndex.append, h te (by simp)]

/-- The state represents the transactions `l` with the spent flags `F`. -/
structure TxRep (E : Env) (F : Flags) (l : List TxEntry) (s : TxState) : Prop where
  index : s.index = indexOf F l
  aliases : AliasRep E l s.aliasDb
  pool : PoolOK E s.pool
  disjoint : ∀ te ∈ l, isCoinbase te.tx = false → s.pool.transactions.get te.id = none
  linked : Linked E l

/-- The outputs that the inputs of `tx` refer to by a single offset behind `l`. -/
def refsOf (l : List TxEntry) (tx : Transaction) : List (Hash × ℕ) :=
  directRefs (outputsOf l) tx.vin

/-- The flags after `te` was added behind `l`: its references set, its own outputs clear. -/
def addFlags (F : Flags) (l : List TxEntry) (te : TxEntry) : Flags :=
  fun id n => if id = te.id then false else F.mark (refsOf l te.tx) true id n

theorem indexOf_addFlags (F : Flags) {l : List TxEntry} {te : TxEntry}
    (h : te.id ∉ l.map TxEntry.id) :
    indexOf (addFlags F l te) l = indexOf (F.mark (refsOf l te.tx) true) l := by
  refine indexOf_congr fun te' hte' => ?_
  have hne : te'.id ≠ te.id := fun he => h (he ▸ List.mem_map_of_mem hte')
  simp [flagsOf, addFlags, hne]

theorem flagsOf_addFlags (F : Flags) (l : List TxEntry) (te : TxEntry) :
    flagsOf (addFlags F l te) te = List.replicate te.tx.vout.length false := by
  have hfun : addFlags F l te te.id = fun _ => false := by
    funext n
    simp [addFlags]
  rw [flagsOf, hfun, List.map_const', List.length_range]

theorem indexOf_append_addFlags (F : Flags) {l : List TxEntry} {te : TxEntry}
    (h : te.id ∉ l.map TxEntry.id) :
    indexOf (addFlags F l te) (l ++ [te]) =
      ⟨(indexOf (F.mark (refsOf l te.tx) true) l).transactions.set te.id
          ⟨te.tx, te.height, (pushTransactionToGlobalOutsIndex te.tx te.id (outputsOf l)).2,
            List.replicate te.tx.vout.length false⟩,
        (indexOf F l).spentKeys.setAll (keyImages te.tx) true,
        (pushTransactionToGlobalOutsIndex te.tx te.id (outputsOf l)).1⟩ := by
  rw [indexOf_append, indexOf_addFlags F h, TxIndex.append, flagsOf_addFlags, outputs_indexOf,
    spentKeys_indexOf_congr _ F]

section Add

variable {E : Env} {F : Flags} {l : List TxEntry} {s : TxState}

theorem InputsOK.addTransactionInputs {te : TxEntry} (h : InputsOK l te.tx) (hrep : TxRep E F l s) :
    s.index.addTransactionInputs te.tx.vin =
      .ok (indexWith (F.mark (refsOf l te.tx) true) l
        ((indexOf F l).spentKeys.setAll (keyImages te.tx) true)) := by
  rw [hrep.index, indexOf_eq_indexWith F F l]
  refine addTransactionInputs_indexOf hrep.linked.nodup_ids F _ te.tx.vin h.resolves h.nodup ?_
  intro k hk
  rw [spentKeys_indexOf, if_neg (h.fresh k hk)]

/-- Adding a transaction whose inputs are in order appends it, or fails and leaves the list as it
was; a failure behind the inputs clears the flags of its references. -/
theorem addTransactionFromBlock_spec (te : TxEntry) (hrep : TxRep E F l s) (hin : InputsOK l te.tx)
    (hhash : getTransactionHash E te.tx = te.id)
    (hsem : isCoinbase te.tx = false → Semantic E te.tx)
    (hpool : isCoinbase te.tx = false → s.pool.transactions.get te.id = none) :
    (Addable E l te ∧ ∃ s', addTransactionFromBlock E s te.tx te.id te.height = .ok s' ∧
      s'.pool = s.pool ∧ TxRep E (addFlags F l te) (l ++ [te]) s') ∨
    (¬Addable E l te ∧ ∃ s' R, (R = [] ∨ R = refsOf l te.tx) ∧
      addTransactionFromBlock E s te.tx te.id te.height = .error s' ∧ s'.pool = s.pool ∧
      TxRep E (F.mark R false) l s') := by
  have hadd := hin.addTransactionInputs hrep
  rcases processBlockchainTxExtra_spec te hrep.aliases with ⟨hextra, d, hproc, hd⟩ | ⟨hno, hproc⟩
  swap
  · -- the extra is refused before anything is written
    refine Or.inr ⟨fun h => hno h.extra, s, [], Or.inl rfl, ?_, rfl, ?_⟩
    · simp [addTransactionFromBlock, hproc]
    · rw [Flags.mark_nil]
      exact hrep
  by_cases hid : te.id ∈ l.map TxEntry.id
  · -- the id is on the chain already: the key images and the alias are taken back
    right
    obtain ⟨d', hunproc, hd'⟩ := unprocessBlockchainTxExtra_spec hextra.1 hd
    have hpurge := purgeTransactionKeyimages_indexOf hrep.linked.nodup_ids
      (F.mark (refsOf l te.tx) true) ((indexOf F l).spentKeys.setAll (keyImages te.tx) true)
      te.tx.vin hin.resolves hin.nodup
      (fun k hk => by
        rw [Map.get_setAll, if_pos (show k ∈ keyImages te.tx from hk)]
        rfl)
    have hkeys : ((indexOf F l).spentKeys.setAll (keyImages te.tx) true).eraseAll
        (kimagesOfVin te.tx.vin) = (indexOf F l).spentKeys :=
      Map.eraseAll_setAll true fun k hk => by rw [spentKeys_indexOf, if_neg (hin.fresh k hk)]
    obtain ⟨tce, htce⟩ : ∃ tce, (indexOf (F.mark (refsOf l te.tx) true) l).transactions.get te.id =
        some tce := by
      obtain ⟨te', hte', he⟩ := List.mem_map.mp hid
      obtain ⟨l₁, l₂, hl⟩ := List.append_of_mem hte'
      have hnd := hrep.linked.nodup_ids
      rw [hl, List.map_append, List.map_cons] at hnd
      rw [← he, hl]
      exact ⟨_, transactions_indexOf _ l₁ te' l₂
        (List.nodup_cons.mp (List.nodup_append.mp hnd).2.1).1⟩
    change _ = Except.ok (indexWith ((F.mark _ true).mark (refsOf l te.tx) false) l _) at hpurge
    rw [hkeys, Flags.mark_mark] at hpurge
    refine ⟨fun h => h.id_notMem hid, ⟨indexOf (F.mark (refsOf l te.tx) false) l, d', s.pool⟩,
      refsOf l te.tx, Or.inr rfl, ?_, rfl, ?_⟩
    · simp only [addTransactionFromBlock, hproc, hadd, hunproc, Option.getD_some]
      have hget : (indexWith (F.mark (refsOf l te.tx) true) l
          ((indexOf F l).spentKeys.setAll (keyImages te.tx) true)).transactions.get te.id =
          some tce := htce
      simp only [hget, hpurge, left]
      rw [indexOf_eq_indexWith (F.mark (refsOf l te.tx) false) F l]
    · exact ⟨rfl, hd', hrep.pool, hrep.disjoint, hrep.linked⟩
  · left
    have hget : (indexWith (F.mark (refsOf l te.tx) true) l
        ((indexOf F l).spentKeys.setAll (keyImages te.tx) true)).transactions.get te.id = none :=
      transactions_indexOf_none _ hid
    have ha : Addable E l te := ⟨hin, hhash, hid, hextra, hsem⟩
    refine ⟨ha, ⟨indexOf (addFlags F l te) (l ++ [te]), d, s.pool⟩, ?_, rfl, ?_⟩
    · simp only [addTransactionFromBlock, hproc, hadd, hget]
      rw [indexOf_append_addFlags F hid]
      rfl
    · refine ⟨rfl, hd, hrep.pool, fun te' hte' hc => ?_, .snoc hrep.linked ha⟩
      rcases List.mem_append.mp hte' with hte' | hte'
      · exact hrep.disjoint te' hte' hc
      · obtain rfl := List.mem_singleton.mp hte'
        exact hpool hc

end Add

/-- Purging the last transaction takes it off the list, clears the flags of its references and
gives it back to the pool unless it is a coinbase. -/
theorem purgeTransactionFromBlockchain_spec {F : Flags} {l : List TxEntry} {s : TxState}
    {te : TxEntry} (v : ChainView) (hrep : TxRep v.env F (l ++ [te]) s) :
    ∃ s', purgeTransactionFromBlockchain v s te.id = .ok s' ∧
      TxRep v.env (F.mark (refsOf l te.tx) false) l s' ∧
      (isCoinbase te.tx = true → s'.pool = s.pool) ∧
      (isCoinbase te.tx = false → ∃ d,
        s'.pool.transactions = s.pool.transactions.set te.id d ∧ d.tx = te.tx) := by
  obtain ⟨hlinked, ha⟩ := hrep.linked.of_append_singleton
  have hget := transactions_indexOf F l te [] (by simp)
  rw [← hrep.index] at hget
  have hrefs : directRefs (outputsOf (l ++ [te])) te.tx.vin = refsOf l te.tx :=
    directRefs_append ha.resolves
  have hkeys : (indexOf F (l ++ [te])).spentKeys = (indexOf F l).spentKeys.setAll
      (keyImages te.tx) true := by rw [indexOf_append, TxIndex.append]
  have hpurge := purgeTransactionKeyimages_indexOf hrep.linked.nodup_ids F
    (indexOf F (l ++ [te])).spentKeys te.tx.vin (fun i hi => resolves_append (ha.resolves i hi))
    ha.nodup (fun k hk => by
      rw [hkeys, Map.get_setAll, if_pos (show k ∈ keyImages te.tx from hk)]
      rfl)
  have herase : (indexOf F (l ++ [te])).spentKeys.eraseAll (kimagesOfVin te.tx.vin) =
      (indexOf F l).spentKeys := by
    rw [hkeys]
    exact Map.eraseAll_setAll true fun k hk => by rw [spentKeys_indexOf, if_neg (ha.fresh k hk)]
  rw [hrefs, herase, ← indexOf_eq_indexWith F F, ← hrep.index] at hpurge
  obtain ⟨d', hunproc, hd'⟩ := unprocessBlockchainTxExtra_spec ha.extra.1 hrep.aliases
  -- what is left to do once the pool has its transaction back
  have hend : ∀ pool, purgeFromIndex
      ⟨indexWith (F.mark (refsOf l te.tx) false) (l ++ [te]) (indexOf F l).spentKeys, d', pool⟩
      te.tx te.id = .ok ⟨indexOf (F.mark (refsOf l te.tx) false) l, d', pool⟩ := by
    intro pool
    have houts : outputsOf (l ++ [te]) =
        (pushTransactionToGlobalOutsIndex te.tx te.id (outputsOf l)).1 := by
      rw [← outputs_indexOf F, indexOf_append, TxIndex.append, outputs_indexOf]
    have htx := transactions_indexOf (F.mark (refsOf l te.tx) false) l te [] (by simp)
    have herase : (indexOf (F.mark (refsOf l te.tx) false) (l ++ [te])).transactions.erase te.id =
        (indexOf (F.mark (refsOf l te.tx) false) l).transactions := by
      rw [indexOf_append, TxIndex.append]
      exact Map.erase_set_of_get_none _ (transactions_indexOf_none _ ha.id_notMem)
    simp only [purgeFromIndex, indexWith, houts, popTransactionFromGlobalIndex_push, htx,
      Option.isSome_some, if_true, herase]
    rw [indexOf_eq_indexWith (F.mark (refsOf l te.tx) false) F l, indexWith]
  have hmain : purgeTransactionFromBlockchain v s te.id =
      if isCoinbase te.tx then .ok ⟨indexOf (F.mark (refsOf l te.tx) false) l, d', s.pool⟩
      else
        let r := v.returnTx ⟨indexWith (F.mark (refsOf l te.tx) false) (l ++ [te])
          (indexOf F l).spentKeys, d', s.pool⟩ te.tx
        if r.1 then purgeFromIndex r.2 te.tx te.id else .error r.2 := by
    simp only [purgeTransactionFromBlockchain, hget, hpurge, left, hunproc, hend]
  have hl : ∀ te' ∈ l, isCoinbase te'.tx = false → s.pool.transactions.get te'.id = none :=
    fun te' hte' => hrep.disjoint te' (by simp [hte'])
  cases hc : isCoinbase te.tx with
  | true =>
    refine ⟨⟨_, d', s.pool⟩, by rw [hmain, hc]; rfl, ⟨rfl, hd', hrep.pool, hl, hlinked⟩,
      fun _ => rfl, by simp⟩
  | false =>
    have hnew : s.pool.transactions.get (getTransactionHash v.env te.tx) = none := by
      rw [ha.hash]
      exact hrep.disjoint te (by simp) hc
    obtain ⟨tvc', p', d, hadd, htx, hdtx, -, hp'⟩ := addTx_kept v.now
      (v.checkTxInputs (indexWith (F.mark (refsOf l te.tx) false) (l ++ [te])
        (indexOf F l).spentKeys)) {} hrep.pool (ha.semantic hc) hnew
    rw [ha.hash] at htx
    refine ⟨⟨_, d', p'⟩, ?_, ⟨rfl, hd', hp', fun te' hte' hc' => ?_, hlinked⟩, by simp,
      fun _ => ⟨d, htx, hdtx⟩⟩
    · rw [hmain, hc]
      simp only [Bool.false_eq_true, if_false, ChainView.returnTx, hadd, if_true]
      exact hend p'
    · have hne : te'.id ≠ te.id := fun he => ha.id_notMem (he ▸ List.mem_map_of_mem hte')
      simp only [htx, Map.get_set_of_ne _ _ hne]
      exact hl te' hte' hc'

end Boolberry
